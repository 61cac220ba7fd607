import JsonRecords.Decimal.Rounding

/-!
# Shortest decimal text of a binary64 number

A number is written with the fewest digits that read back as it; among those
the nearest is taken, and of two equally near the even one. The digits stand
in positional notation while the point lies within the first sixteen places or
up to five places before them, and with a signed exponent otherwise.
-/

namespace JsonRecords

namespace Binary64

/-- A positive number `significand * 2 ^ unit`. -/
structure Parts where
  significand : Nat
  unit : Int

/-- The parts of the number with the given bits, without their sign. -/
def partsOf (bits : Nat) : Parts :=
  let field := bits / Nat.pow 2 52
  let fraction := bits % Nat.pow 2 52
  if field = 0 then ⟨fraction, -1074⟩ else ⟨Nat.pow 2 52 + fraction, Int.ofNat field - 1075⟩

/-- The reals that round to a positive number, as three ratios over one
denominator: the lower end, the number itself and the upper end. The ends
belong to the range when the significand is even. -/
structure Range where
  lower : Nat
  value : Nat
  upper : Nat
  den : Nat
  closed : Bool

/-- The range of a number. Below a power of two the neighbours lie half as far
apart. -/
def Parts.range (p : Parts) : Range :=
  let narrow := p.significand = Nat.pow 2 52 ∧ -1074 < p.unit
  let value := 4 * p.significand
  let lower := value - (if narrow then 1 else 2)
  let upper := value + 2
  let scale := Nat.pow 2 p.unit.toNat
  ⟨lower * scale, value * scale, upper * scale, 4 * Nat.pow 2 (-p.unit).toNat,
    p.significand % 2 = 0⟩

/-- Whether `digits * 10 ^ exponent` lies in a range. -/
def Range.holds (r : Range) (digits : Nat) (exponent : Int) : Bool :=
  let n := digits * Nat.pow 10 exponent.toNat * r.den
  let d := Nat.pow 10 (-exponent).toNat
  if r.closed then decide (r.lower * d ≤ n ∧ n ≤ r.upper * d)
  else decide (r.lower * d < n ∧ n < r.upper * d)

/-- The greatest `e` with `10 ^ e ≤ value / den`, found upward from a bound
below it. -/
def floorLog10 (value den : Nat) : (steps : Nat) → Int → Int
  | 0, e => e
  | n + 1, e =>
    let next := e + 1
    if den * Nat.pow 10 next.toNat ≤ value * Nat.pow 10 (-next).toNat then
      floorLog10 value den n next
    else e

/-- The neighbour of the value on the grid of multiples of `10 ^ exponent`
that lies in the range, the nearer if both do. -/
def Range.onGrid? (r : Range) (exponent : Int) : Option Nat :=
  let num := r.value * Nat.pow 10 (-exponent).toNat
  let den := r.den * Nat.pow 10 exponent.toNat
  let below := num / den
  let rest := num % den
  match r.holds below exponent, r.holds (below + 1) exponent with
  | true, true =>
    if 2 * rest < den then some below
    else if den < 2 * rest then some (below + 1)
    else some (below + below % 2)
  | true, false => some below
  | false, true => some (below + 1)
  | false, false => none

/-- The first grid with a hit, from coarse to fine. -/
def Range.firstHit (r : Range) : (steps : Nat) → Int → Nat × Int
  | 0, e => (0, e)
  | n + 1, e =>
    match r.onGrid? e with
    | some digits => (digits, e)
    | none => r.firstHit n (e - 1)

/-- The digits and exponent of the shortest decimal of a positive number. -/
def shortest (bits : Nat) : Nat × Int :=
  let r := (partsOf bits).range
  let guess := Int.ofNat r.value.log2 - Int.ofNat r.den.log2 - 1
  let start := if 0 ≤ guess then guess * 3 / 10 - 1 else guess * 4 / 10 - 1
  r.firstHit 400 (floorLog10 r.value r.den 400 start)

def dropZeros : (steps : Nat) → Nat × Int → Nat × Int
  | 0, d => d
  | n + 1, (digits, e) =>
    if digits ≠ 0 ∧ digits % 10 = 0 then dropZeros n (digits / 10, e + 1) else (digits, e)

/-- Digits with a point after the first `n` of them. -/
def pointed (digits : String) (n : Nat) : String :=
  String.ofList (digits.toList.take n) ++ "." ++ String.ofList (digits.toList.drop n)

/-- An exponent as text: its sign is always written. -/
def exponentText (e : Int) : String :=
  if e < 0 then s!"e{e}" else s!"e+{e}"

/-- A decimal as text: the point falls after `point` digits. -/
def layout (digits : Nat) (exponent : Int) : String :=
  let text := toString digits
  let point := Int.ofNat text.length + exponent
  let zeros (n : Nat) : String := "".pushn '0' n
  if 0 ≤ exponent ∧ point ≤ 16 then
    text ++ zeros exponent.toNat ++ ".0"
  else if 0 < point ∧ point ≤ 16 then
    pointed text point.toNat
  else if -5 < point ∧ point ≤ 0 then
    "0." ++ zeros (-point).toNat ++ text
  else if text.length = 1 then
    text ++ exponentText (point - 1)
  else
    pointed text 1 ++ exponentText (point - 1)

/-- The text of a finite number. -/
def text (bits : UInt64) : String :=
  let n := bits.toNat
  let sign := if Nat.pow 2 63 ≤ n then "-" else ""
  let m := n % Nat.pow 2 63
  if m = 0 then sign ++ "0.0"
  else
    let d := dropZeros 20 (shortest m)
    sign ++ layout d.1 d.2

end Binary64

end JsonRecords
