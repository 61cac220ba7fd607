/-!
# UTF-8

`encode` writes characters as bytes and `decode` reads them back. The reader
walks the bytes one at a time and carries the sequence it is inside of, so a
refusal says exactly how far the text was good: `validLength` bytes, followed
either by a sequence that breaks off at the end of the bytes or by
`badLength` bytes that no sequence continues.
-/

namespace JsonRecords

/-- A text as it is stored, byte by byte. -/
abbrev Bytes := List UInt8

namespace Utf8

def encodeChar (c : Char) : Bytes :=
  let n := c.toNat
  if n < 0x80 then
    [UInt8.ofNat n]
  else if n < 0x800 then
    [UInt8.ofNat (0xC0 + n / 0x40), UInt8.ofNat (0x80 + n % 0x40)]
  else if n < 0x10000 then
    [UInt8.ofNat (0xE0 + n / 0x1000), UInt8.ofNat (0x80 + n / 0x40 % 0x40),
      UInt8.ofNat (0x80 + n % 0x40)]
  else
    [UInt8.ofNat (0xF0 + n / 0x40000), UInt8.ofNat (0x80 + n / 0x1000 % 0x40),
      UInt8.ofNat (0x80 + n / 0x40 % 0x40), UInt8.ofNat (0x80 + n % 0x40)]

def encode (cs : List Char) : Bytes :=
  cs.flatMap encodeChar

@[simp] theorem encode_nil : encode [] = [] := rfl

@[simp] theorem encode_cons (c : Char) (cs : List Char) :
    encode (c :: cs) = encodeChar c ++ encode cs := by
  simp [encode]

@[simp] theorem encode_append (cs ds : List Char) :
    encode (cs ++ ds) = encode cs ++ encode ds := by
  simp [encode]

/-- Where and why bytes stop being text. `badLength` is absent when the bytes
end inside a sequence that is good so far. -/
structure Fault where
  validLength : Nat
  badLength : Option Nat
deriving DecidableEq, Repr

/-- What the reader says about bytes that are no text. -/
def Fault.message (f : Fault) : String :=
  match f.badLength with
  | some k => s!"invalid utf-8 sequence of {k} bytes from index {f.validLength}"
  | none => s!"incomplete utf-8 byte sequence from index {f.validLength}"

/-- A sequence begun and not finished: the bits so far, how many bytes are
missing, the range the next byte must lie in, and how many bytes were read. -/
structure Pending where
  value : Nat
  missing : Nat
  low : UInt8
  high : UInt8
  seen : Nat

/-- The sequence a leading byte begins. The narrowed ranges keep out
overlong forms, surrogates and values past the last character. -/
def lead? (b : UInt8) : Option Pending :=
  if b < 0xC2 then none
  else if b < 0xE0 then some ⟨b.toNat - 0xC0, 1, 0x80, 0xBF, 1⟩
  else if b = 0xE0 then some ⟨0, 2, 0xA0, 0xBF, 1⟩
  else if b = 0xED then some ⟨0x0D, 2, 0x80, 0x9F, 1⟩
  else if b < 0xF0 then some ⟨b.toNat - 0xE0, 2, 0x80, 0xBF, 1⟩
  else if b = 0xF0 then some ⟨0, 3, 0x90, 0xBF, 1⟩
  else if b < 0xF4 then some ⟨b.toNat - 0xF0, 3, 0x80, 0xBF, 1⟩
  else if b = 0xF4 then some ⟨4, 3, 0x80, 0x8F, 1⟩
  else none

/-- Reads on from a point where `valid` bytes gave the characters `done`
(latest first), inside the sequence `pending` if there is one. -/
def decodeFrom (pending : Option Pending) (valid : Nat) (done : List Char) :
    Bytes → Except Fault (List Char)
  | [] =>
    match pending with
    | none => .ok done.reverse
    | some _ => .error ⟨valid, none⟩
  | b :: s =>
    match pending with
    | none =>
      if b < 0x80 then
        decodeFrom none (valid + 1) (Char.ofNat b.toNat :: done) s
      else
        match lead? b with
        | none => .error ⟨valid, some 1⟩
        | some p => decodeFrom (some p) valid done s
    | some p =>
      if p.low ≤ b ∧ b ≤ p.high then
        let value := p.value * 0x40 + (b.toNat - 0x80)
        if p.missing ≤ 1 then
          decodeFrom none (valid + p.seen + 1) (Char.ofNat value :: done) s
        else
          decodeFrom (some ⟨value, p.missing - 1, 0x80, 0xBF, p.seen + 1⟩) valid done s
      else
        .error ⟨valid, some p.seen⟩

/-- The characters of a text, or where the bytes stop being one. -/
def decode (s : Bytes) : Except Fault (List Char) :=
  decodeFrom none 0 [] s

def ofString (s : String) : Bytes :=
  encode s.toList

end Utf8

end JsonRecords
