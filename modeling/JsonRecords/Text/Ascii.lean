import JsonRecords.Text.Utf8

/-!
# Bytes with a meaning of their own

Names for the ASCII bytes that JSON text is made of.
-/

namespace JsonRecords

namespace Ascii

def lineFeed : UInt8 := 0x0A
def quote : UInt8 := 0x22
def plus : UInt8 := 0x2B
def comma : UInt8 := 0x2C
def minus : UInt8 := 0x2D
def point : UInt8 := 0x2E
def slash : UInt8 := 0x2F
def zero : UInt8 := 0x30
def colon : UInt8 := 0x3A
def openBracket : UInt8 := 0x5B
def backslash : UInt8 := 0x5C
def closeBracket : UInt8 := 0x5D
def letterB : UInt8 := 0x62
def letterF : UInt8 := 0x66
def letterN : UInt8 := 0x6E
def letterR : UInt8 := 0x72
def letterT : UInt8 := 0x74
def letterU : UInt8 := 0x75
def openBrace : UInt8 := 0x7B
def closeBrace : UInt8 := 0x7D

/-- Space, tabulator, line feed or carriage return. -/
def isBlank (b : UInt8) : Bool :=
  b = 0x20 || b = 0x09 || b = 0x0A || b = 0x0D

def isDigit (b : UInt8) : Bool :=
  0x30 ≤ b && b ≤ 0x39

def digitValue (b : UInt8) : Nat :=
  b.toNat - 0x30

/-- The value of a hexadecimal digit of either case. -/
def hexValue? (b : UInt8) : Option Nat :=
  if isDigit b then some (digitValue b)
  else if 0x61 ≤ b && b ≤ 0x66 then some (b.toNat - 0x61 + 10)
  else if 0x41 ≤ b && b ≤ 0x46 then some (b.toNat - 0x41 + 10)
  else none

/-- Whether a byte is the letter that begins an exponent. -/
def isExponentMark (b : UInt8) : Bool :=
  b = 0x65 || b = 0x45

def skipBlank (s : Bytes) : Bytes :=
  s.dropWhile isBlank

@[simp] theorem skipBlank_nil : skipBlank [] = [] := rfl

theorem skipBlank_cons (b : UInt8) (s : Bytes) :
    skipBlank (b :: s) = if isBlank b then skipBlank s else b :: s := by
  cases h : isBlank b <;> simp [skipBlank, h]

theorem skipBlank_skipBlank (s : Bytes) : skipBlank (skipBlank s) = skipBlank s := by
  induction s with
  | nil => rfl
  | cons b s ih =>
      cases h : isBlank b
      · simp [skipBlank_cons, h]
      · simp [skipBlank_cons, h, ih]

end Ascii

end JsonRecords
