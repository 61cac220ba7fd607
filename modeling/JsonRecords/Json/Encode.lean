import JsonRecords.Decimal.Shortest
import JsonRecords.Json.Value

/-!
# Encoding JSON

Two layouts: compact, without any blank, and pretty, one item a line with two
spaces for each level. In strings only quotes, backslashes and the characters
below the space are escaped.
-/

namespace JsonRecords

namespace Encode

/-- The lower-case hexadecimal digit for a value below sixteen. -/
def hexDigit (n : Nat) : Char :=
  if n < 10 then Char.ofNat (0x30 + n) else Char.ofNat (0x57 + n)

def quotedChar (c : Char) : List Char :=
  if c = '"' then ['\\', '"']
  else if c = '\\' then ['\\', '\\']
  else if c = '\x08' then ['\\', 'b']
  else if c = '\x0c' then ['\\', 'f']
  else if c = '\n' then ['\\', 'n']
  else if c = '\r' then ['\\', 'r']
  else if c = '\t' then ['\\', 't']
  else if c.toNat < 0x20 then
    ['\\', 'u', '0', '0', hexDigit (c.toNat / 16), hexDigit (c.toNat % 16)]
  else [c]

def quoted (s : String) : String :=
  String.ofList ('"' :: s.toList.flatMap quotedChar ++ ['"'])

def number : Number → String
  | .int value => toString value
  | .float bits => Binary64.text bits

mutual

/-- A value without blanks. -/
def compact : Json → String
  | .null => "null"
  | .bool value => if value then "true" else "false"
  | .number value => number value
  | .string value => quoted value
  | .array items => "[" ++ ",".intercalate (compactItems items) ++ "]"
  | .object members => "\x7b" ++ ",".intercalate (compactMembers members) ++ "\x7d"

def compactItems : List Json → List String
  | [] => []
  | item :: rest => compact item :: compactItems rest

def compactMembers : List (String × Json) → List String
  | [] => []
  | (key, item) :: rest => (quoted key ++ ":" ++ compact item) :: compactMembers rest

end

def newline (level : Nat) : String :=
  "\n" ++ "".pushn ' ' (2 * level)

/-- Items between brackets, each on a line of its own one level further in. An
empty container stays on its line. -/
def block (opening closing : String) (level : Nat) (items : List String) : String :=
  match items with
  | [] => opening ++ closing
  | _ =>
    opening ++ newline (level + 1) ++ ("," ++ newline (level + 1)).intercalate items
      ++ newline level ++ closing

mutual

/-- A value that starts on a line of the given level. -/
def prettyAt (level : Nat) : Json → String
  | .null => "null"
  | .bool value => if value then "true" else "false"
  | .number value => number value
  | .string value => quoted value
  | .array items => block "[" "]" level (prettyItems (level + 1) items)
  | .object members => block "\x7b" "\x7d" level (prettyMembers (level + 1) members)

/-- Each item, starting on a line of the given level. -/
def prettyItems (level : Nat) : List Json → List String
  | [] => []
  | item :: rest => prettyAt level item :: prettyItems level rest

/-- Each member, starting on a line of the given level. -/
def prettyMembers (level : Nat) : List (String × Json) → List String
  | [] => []
  | (key, item) :: rest =>
    (quoted key ++ ": " ++ prettyAt level item) :: prettyMembers level rest

end

/-- A value with one item a line. -/
def pretty (v : Json) : String :=
  prettyAt 0 v

end Encode

end JsonRecords
