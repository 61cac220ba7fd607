import JsonRecords.Text.Ascii

/-!
# Faults of JSON text

A reader that refuses a text says why and how many bytes it had not consumed.
Counting what is left, and not what was read, lets every reader work on the
rest of the text alone; line and column are worked out at the end, when the
whole text is at hand.
-/

namespace JsonRecords

/-- How a JSON value of the wrong shape is named in a message. -/
inductive Found where
  | null
  | boolean (value : Bool)
  | integer (value : Int)
  | decimal (text : String)
  | string (quoted : String)
  | sequence
  | map

def Found.text : Found → String
  | null => "null"
  | boolean value => s!"boolean `{value}`"
  | integer value => s!"integer `{value}`"
  | decimal text => s!"floating point `{text}`"
  | string quoted => s!"string {quoted}"
  | sequence => "sequence"
  | map => "map"

/-- Why a well-written JSON text is not the record it should be. -/
inductive Mismatch where
  | missing (field : String)
  | repeated (field : String)
  | unknownWord (word : String) (known : List String)
  | wrongKind (found : Found) (wanted : String)
  | tooShort (length : Nat) (wanted : String)

def Mismatch.text : Mismatch → String
  | missing field => s!"missing field `{field}`"
  | repeated field => s!"duplicate field `{field}`"
  | unknownWord word known =>
    s!"unknown variant `{word}`, expected one of " ++
      ", ".intercalate (known.map fun w => s!"`{w}`")
  | wrongKind found wanted => s!"invalid type: {found.text}, expected {wanted}"
  | tooShort length wanted => s!"invalid length {length}, expected {wanted}"

/-- Why a JSON text is refused. -/
inductive Reason where
  | endInValue
  | endInList
  | endInObject
  | endInString
  | valueExpected
  | wordExpected
  | colonExpected
  | listEndExpected
  | objectEndExpected
  | keyExpected
  | trailingComma
  | trailingText
  | tooDeep
  | badNumber
  | numberRange
  | badEscape
  | controlCharacter
  | loneSurrogate
  | cutSurrogate
  | badCodePoint (excess : Nat)
  | shape (mismatch : Mismatch)

def Reason.text : Reason → String
  | endInValue => "EOF while parsing a value"
  | endInList => "EOF while parsing a list"
  | endInObject => "EOF while parsing an object"
  | endInString => "EOF while parsing a string"
  | valueExpected => "expected value"
  | wordExpected => "expected ident"
  | colonExpected => "expected `:`"
  | listEndExpected => "expected `,` or `]`"
  | objectEndExpected => "expected `,` or `\x7d`"
  | keyExpected => "key must be a string"
  | trailingComma => "trailing comma"
  | trailingText => "trailing characters"
  | tooDeep => "recursion limit exceeded"
  | badNumber => "invalid number"
  | numberRange => "number out of range"
  | badEscape => "invalid escape"
  | controlCharacter => "control character (\\u0000-\\u001F) found while parsing a string"
  | loneSurrogate => "lone leading surrogate in hex escape"
  | cutSurrogate => "unexpected end of hex escape"
  | badCodePoint _ => "invalid unicode code point"
  | shape mismatch => mismatch.text

/-- By how much the reported column lies before the place of the fault. -/
def Reason.excess : Reason → Nat
  | badCodePoint excess => excess
  | _ => 0

/-- A refusal: the reason, and how many bytes of the text were left. -/
structure Fault where
  reason : Reason
  left : Nat

namespace Fault

def here (reason : Reason) (rest : Bytes) : Fault :=
  ⟨reason, rest.length⟩

/-- A fault in the first byte of the rest, counted as if that byte had been
read. At the end of the text there is no such byte. -/
def ahead (reason : Reason) (rest : Bytes) : Fault :=
  ⟨reason, rest.length - 1⟩

def consumed (text : Bytes) (f : Fault) : Bytes :=
  text.take (text.length - f.left)

/-- The line of a fault, counted from one. -/
def line (text : Bytes) (f : Fault) : Nat :=
  1 + (f.consumed text).count Ascii.lineFeed

/-- The bytes between the last line feed and a fault. -/
def column (text : Bytes) (f : Fault) : Nat :=
  ((f.consumed text).reverse.takeWhile (· != Ascii.lineFeed)).length - f.reason.excess

/-- The sentence for a fault of a text, with its place. -/
def message (text : Bytes) (f : Fault) : String :=
  s!"{f.reason.text} at line {f.line text} column {f.column text}"

end Fault

end JsonRecords
