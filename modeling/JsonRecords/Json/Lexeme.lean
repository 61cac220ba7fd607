import JsonRecords.Decimal.Digits
import JsonRecords.Decimal.Rounding
import JsonRecords.Json.Fault
import JsonRecords.Json.Value

/-!
# The lexemes of JSON

Readers for the words `null`, `true` and `false`, for numerals and for quoted
strings. Each takes the rest of a text from the point where it starts and
returns what is left after it.
-/

namespace JsonRecords

namespace Lexeme

/-! ## Words -/

def word : (letters : Bytes) → Bytes → Except Fault Bytes
  | [], s => .ok s
  | _ :: _, [] => .error (.here .endInValue [])
  | l :: letters, b :: s =>
    if b = l then word letters s else .error (.here .wordExpected s)

/-- The letters of `null` after the first. -/
def nullTail : Bytes := [0x75, 0x6C, 0x6C]

/-- The letters of `true` after the first. -/
def trueTail : Bytes := [0x72, 0x75, 0x65]

/-- The letters of `false` after the first. -/
def falseTail : Bytes := [0x61, 0x6C, 0x73, 0x65]

/-! ## Numerals -/

/-- A numeral as it is written: its sign, its digits before and after the
point, and its exponent with a sign. -/
structure Numeral where
  negative : Bool
  whole : Bytes
  fraction : Option Bytes
  exponent : Option (Bool × Bytes)

/-- The number that a row of decimal digits denotes. -/
def digitsValue (digits : Bytes) : Nat :=
  Digits.ofDigits 10 (digits.map Ascii.digitValue)

def spanDigits (s : Bytes) : Bytes × Bytes :=
  (s.takeWhile Ascii.isDigit, s.dropWhile Ascii.isDigit)

/-- The digits before the point, at the point where they start. A zero stands
alone. `cut` is the reason given when the text ends instead. -/
def whole (cut : Reason) : Bytes → Except Fault (Bytes × Bytes)
  | [] => .error (.here cut [])
  | b :: s =>
    if b = Ascii.zero then
      match s with
      | [] => .ok ([b], s)
      | c :: _ => if Ascii.isDigit c then .error (.ahead .badNumber s) else .ok ([b], s)
    else if Ascii.isDigit b then
      let (digits, rest) := spanDigits s
      .ok (b :: digits, rest)
    else
      .error (.here .badNumber s)

/-- The digits after the point, if there is a point. -/
def fraction (cut : Reason) : Bytes → Except Fault (Option Bytes × Bytes)
  | [] => .ok (none, [])
  | b :: s =>
    if b = Ascii.point then
      match spanDigits s with
      | ([], []) => .error (.ahead cut [])
      | ([], c :: rest) => .error (.ahead .badNumber (c :: rest))
      | (digits, rest) => .ok (some digits, rest)
    else
      .ok (none, b :: s)

/-- The digits of an exponent, at least one. -/
def exponentDigits (cut : Reason) : Bytes → Except Fault (Bytes × Bytes)
  | [] => .error (.here cut [])
  | b :: s =>
    if Ascii.isDigit b then
      let (digits, rest) := spanDigits s
      .ok (b :: digits, rest)
    else
      .error (.here .badNumber s)

/-- The sign of an exponent, if one is written: whether it is a minus. -/
def exponentSign : Bytes → Bool × Bytes
  | [] => (false, [])
  | b :: s =>
    if b = Ascii.minus then (true, s)
    else if b = Ascii.plus then (false, s)
    else (false, b :: s)

/-- The exponent, if there is one. -/
def exponent (cut : Reason) : Bytes → Except Fault (Option (Bool × Bytes) × Bytes)
  | [] => .ok (none, [])
  | b :: s =>
    if Ascii.isExponentMark b then do
      let (negative, s) := exponentSign s
      let (digits, s) ← exponentDigits cut s
      return (some (negative, digits), s)
    else
      .ok (none, b :: s)

def unsigned (cut : Reason) (negative : Bool) (s : Bytes) : Except Fault (Numeral × Bytes) := do
  let (whole, s) ← whole cut s
  let (fraction, s) ← fraction cut s
  let (exponent, s) ← exponent cut s
  return (⟨negative, whole, fraction, exponent⟩, s)

/-- A numeral, at its first byte. -/
def numeral (cut : Reason) : Bytes → Except Fault (Numeral × Bytes)
  | [] => .error (.here cut [])
  | b :: s => if b = Ascii.minus then unsigned cut true s else unsigned cut false (b :: s)

namespace Numeral

/-- Whether every written digit before the exponent is a zero. -/
def isZero (n : Numeral) : Bool :=
  n.whole.all (· = Ascii.zero) && (n.fraction.getD []).all (· = Ascii.zero)

/-- The binary64 number nearest to a numeral, if it is in range. -/
def toFloat? (n : Numeral) : Option Number :=
  let fraction := n.fraction.getD []
  let scale : Int := match n.exponent with
    | none => 0
    | some (true, digits) => -Int.ofNat (digitsValue digits)
    | some (false, digits) => Int.ofNat (digitsValue digits)
  (Binary64.ofDecimal (digitsValue (n.whole ++ fraction)) (scale - Int.ofNat fraction.length)).map
    fun bits => .float (Binary64.signed n.negative bits)

/-- The number a numeral denotes. Without point and exponent it is an integer
if it fits 64 bits, unsigned or, below zero, signed; minus zero is no
integer. -/
def toNumber? (n : Numeral) : Option Number :=
  match n.fraction, n.exponent with
  | none, none =>
    let value := digitsValue n.whole
    if n.negative then
      if 0 < value ∧ value ≤ Nat.pow 2 63 then some (.int (-Int.ofNat value)) else n.toFloat?
    else
      if value < Nat.pow 2 64 then some (.int (Int.ofNat value)) else n.toFloat?
  | _, _ => n.toFloat?

end Numeral

/-- How many digits follow the first that brings a number past 31 bits, if
one does. -/
def pastRange (value : Nat) : Bytes → Option Nat
  | [] => none
  | b :: digits =>
    let next := 10 * value + Ascii.digitValue b
    if Nat.pow 2 31 ≤ next then some digits.length else pastRange next digits

/-- A number, at its first byte. One that is too large is refused after its
last digit, and already within its exponent when the exponent alone runs past
31 bits. -/
def number (s : Bytes) : Except Fault (Number × Bytes) := do
  let (n, s) ← numeral .endInValue s
  match n.exponent.bind fun e => if e.1 || n.isZero then none else pastRange 0 e.2 with
  | some more => throw ⟨.numberRange, s.length + more⟩
  | none =>
    match n.toNumber? with
    | some value => return (value, s)
    | none => throw (.here .numberRange s)

/-! ## Strings -/

/-- The character that a one-letter escape stands for. -/
def escaped? (b : UInt8) : Option UInt8 :=
  if b = Ascii.quote ∨ b = Ascii.backslash ∨ b = Ascii.slash then some b
  else if b = Ascii.letterB then some 0x08
  else if b = Ascii.letterF then some 0x0C
  else if b = Ascii.letterN then some 0x0A
  else if b = Ascii.letterR then some 0x0D
  else if b = Ascii.letterT then some 0x09
  else none

def hex4? (a b c d : UInt8) : Option Nat := do
  let a ← Ascii.hexValue? a
  let b ← Ascii.hexValue? b
  let c ← Ascii.hexValue? c
  let d ← Ascii.hexValue? d
  return ((a * 16 + b) * 16 + c) * 16 + d

def isHighSurrogate (n : Nat) : Bool :=
  0xD800 ≤ n && n ≤ 0xDBFF

def isLowSurrogate (n : Nat) : Bool :=
  0xDC00 ≤ n && n ≤ 0xDFFF

def joinSurrogates (high low : Nat) : Char :=
  Char.ofNat (0x10000 + (high - 0xD800) * 0x400 + (low - 0xDC00))

def hex4 : Bytes → Except Fault (Nat × Bytes)
  | a :: b :: c :: d :: s =>
    match hex4? a b c d with
    | some n => .ok (n, s)
    | none => .error (.here .badEscape s)
  | _ => .error (.here .endInString [])

/-- Consumes a byte that has to follow the first half of a surrogate pair. -/
def pairByte (wanted : UInt8) : Bytes → Except Fault Bytes
  | [] => .error (.here .endInString [])
  | b :: s => if b = wanted then .ok s else .error (.here .cutSurrogate s)

/-- An escape by number after its `u`: what it stands for, and how many bytes
it takes after its backslash. -/
def numbered (s : Bytes) : Except Fault (Bytes × Nat) := do
  let (n, s) ← hex4 s
  if isLowSurrogate n then throw (.here .loneSurrogate s)
  else if isHighSurrogate n then do
    let s ← pairByte Ascii.backslash s
    let s ← pairByte Ascii.letterU s
    let (m, s) ← hex4 s
    if isLowSurrogate m then return (Utf8.encodeChar (joinSurrogates n m), 11)
    else throw (.here .loneSurrogate s)
  else return (Utf8.encodeChar (Char.ofNat n), 5)

/-- An escape after its backslash: what it stands for, and how many bytes it
takes. -/
def escape : Bytes → Except Fault (Bytes × Nat)
  | [] => .error (.here .endInString [])
  | e :: s =>
    if e = Ascii.letterU then numbered s
    else
      match escaped? e with
      | some c => .ok ([c], 1)
      | none => .error (.here .badEscape s)

/-- The content of a string after its opening quote, escapes resolved. The
first `taken` bytes belong to an escape that has been resolved; `done` is the
content so far, latest byte first. -/
def content (taken : Nat) (done : Bytes) : Bytes → Except Fault (Bytes × Bytes)
  | [] => .error (.here .endInString [])
  | b :: s =>
    match taken with
    | n + 1 => content n done s
    | 0 =>
      if b = Ascii.quote then .ok (done.reverse, s)
      else if b = Ascii.backslash then do
        let (bytes, n) ← escape s
        content n (bytes.reverse ++ done) s
      else if b < 0x20 then .error (.here .controlCharacter s)
      else content 0 (b :: done) s

/-- A string after its opening quote. Content that is not UTF-8 is found when
the closing quote has been read. -/
def string (s : Bytes) : Except Fault (String × Bytes) := do
  let (bytes, s) ← content 0 [] s
  match Utf8.decode bytes with
  | .ok cs => return (String.ofList cs, s)
  | .error f => throw (.here (.badCodePoint (bytes.length - f.validLength)) s)

end Lexeme

end JsonRecords
