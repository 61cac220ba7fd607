/-!
# Rounding to binary64

`ofRatio` gives the bits of the binary64 number nearest to a positive ratio, a
tie going to the even neighbour. The bits of a nonnegative number are read as
one natural number: the significand counts multiples of `2 ^ q` and the
exponent field is added on top, so that a significand rounded up to the next
power of two carries into the exponent by itself.
-/

namespace JsonRecords

namespace Binary64

/-- The natural number nearest to a ratio, a tie going to the even one. -/
def roundHalfEven (num den : Nat) : Nat :=
  let q := num / den
  let r := num % den
  if 2 * r < den then q
  else if den < 2 * r then q + 1
  else q + q % 2

/-- The bits of positive infinity, the first pattern past the finite ones. -/
def infinity : Nat :=
  2047 * Nat.pow 2 52

/-- The greatest `e` with `2 ^ e ≤ num / den`. -/
def floorLog2 (num den : Nat) : Int :=
  let e : Int := Int.ofNat num.log2 - Int.ofNat den.log2
  let above := if 0 ≤ e then den * Nat.pow 2 e.toNat ≤ num else den ≤ num * Nat.pow 2 (-e).toNat
  if above then e else e - 1

/-- The bits of the number nearest to a positive ratio, none if that is past
the finite numbers. The unit in the last place is `2 ^ q`. -/
def ofRatio (num den : Nat) : Option Nat :=
  let q := max (floorLog2 num den - 52) (-1074)
  let significand :=
    if 0 ≤ q then roundHalfEven num (den * Nat.pow 2 q.toNat)
    else roundHalfEven (num * Nat.pow 2 (-q).toNat) den
  let bits := (q + 1074).toNat * Nat.pow 2 52 + significand
  if bits < infinity then some bits else none

/-- The bits of `digits * 10 ^ exponent`, none if it is too large. Exponents
far outside the range are settled before any power is computed. -/
def ofDecimal (digits : Nat) (exponent : Int) : Option Nat :=
  if digits = 0 then some 0
  else if 400 < exponent then none
  else if exponent < -(Int.ofNat digits.log2) - 401 then some 0
  else if 0 ≤ exponent then ofRatio (digits * Nat.pow 10 exponent.toNat) 1
  else ofRatio digits (Nat.pow 10 (-exponent).toNat)

def signed (negative : Bool) (bits : Nat) : UInt64 :=
  UInt64.ofNat (if negative then Nat.pow 2 63 + bits else bits)

end Binary64

end JsonRecords
