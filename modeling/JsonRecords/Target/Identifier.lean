import JsonRecords.Text.Utf8

/-!
# Identifiers

An identifier is an ASCII letter or underscore followed by letters, digits and
underscores. `sanitize` turns any name into one: every other character becomes
an underscore, and one more is put in front where the result would be empty or
begin with a digit.
-/

namespace JsonRecords

namespace Identifier

def isDigit (c : Char) : Bool :=
  '0' ≤ c && c ≤ '9'

def isStart (c : Char) : Bool :=
  ('A' ≤ c && c ≤ 'Z') || ('a' ≤ c && c ≤ 'z') || c == '_'

def isPart (c : Char) : Bool :=
  isStart c || isDigit c

def spells : List Char → Bool
  | [] => false
  | c :: cs => isStart c && cs.all isPart

def clean (c : Char) : Char :=
  if isPart c then c else '_'

/-- Puts an underscore before a digit at the front, or before nothing. -/
def guardFront : List Char → List Char
  | [] => ['_']
  | c :: cs => if isDigit c then '_' :: c :: cs else c :: cs

end Identifier

def isIdentifier (name : String) : Bool :=
  Identifier.spells name.toList

/-- The identifier closest to a name. -/
def sanitize (name : String) : String :=
  String.ofList (Identifier.guardFront (name.toList.map Identifier.clean))

end JsonRecords
